import MiniPascal.Proofs.CleanReading

/-!
# Statements are read by their rules

A conditional statement takes an `else` whenever there is one, so each `else` goes to the nearest
condition.
-/

namespace MiniPascal

open List

section Reads

/-- What is known of a statement that was read before the given token. -/
structure StatementRead (us : List Token) (u : Token) (s : Statement) : Prop where
  text : StatementText us u.position s
  nearest : s.ElsesNearest
  closed : s.isOpen = true → u.kind ≠ .keyword .elseKw

/-- What is known of the statements of a sequence that was read before the given token. -/
structure SequenceRead (us : List Token) (u : Token) (ss : List Statement) : Prop where
  text : SequenceText StatementText us u.position ss
  nearest : ∀ s ∈ ss, s.ElsesNearest

theorem Parse.reads_direction : Reads direction fun us d => ∃ t, us = [t] ∧ t.kind = d.kind := by
  refine reads_kind fun t => ?_
  split
  · next ht => exact readsAt_advance ht nofun fun _ => .pure ⟨t, rfl, ht⟩
  · next ht => exact readsAt_advance ht nofun fun _ => .pure ⟨t, rfl, ht⟩
  · exact Reads.expected _ t

/-- An assignment or a call is a statement wherever it stands, and no `else` could belong to it. -/
theorem Parse.reads_assignmentOrCall :
    Reads assignmentOrCall fun us s => ∀ u, StatementRead us u s := by
  refine reads_identifier fun t n hn => reads_kind fun u => ?_
  split
  · refine (reads_indexList reads_expression).bind (fun us es hes => ?_) u
    refine reads_expect nofun fun v hv _ => reads_expression.map fun vs e he w => ?_
    exact ⟨.assignElement hn hes hv he, .assign, nofun⟩
  · next hu =>
    refine readsAt_advance hu nofun fun _ => reads_expression.map fun us e he w => ?_
    exact ⟨.assign hn hu he, .assign, nofun⟩
  · refine (reads_argumentList reads_expression).map (fun us es hes w => ?_) u
    exact ⟨.callWith hn hes, .call, nofun⟩
  · exact Reads.expected _ u
  · exact Reads.expected _ u
  · exact Reads.pure (fun w => ⟨.call hn, .call, nofun⟩) u

namespace Recover

theorem notes_afterFault (e : Fault) (before : Nat) : Notes (afterFault e before) :=
  (notes_record e).bind fun _ => .bind advances_skipStatement fun _ => .bind .get fun _ =>
    .ite advances_advance (.pure _)

theorem cleanAt_afterStatement (t : Token) : CleanAt t afterStatement fun us _ _ =>
    us = [t] ∧ t.kind = .mark .semicolon ∨
      us = [] ∧ (t.kind = .keyword .endKw ∨ t.kind = .endOfText) := by
  refine cleanAt_accept nofun (fun ht _ => .pure (.inl ⟨rfl, ht⟩)) fun _ => ?_
  rw [if_neg Bool.false_ne_true]
  refine .get fun s _ hcurrent => ?_
  dsimp only
  split
  · next hend =>
    rw [Input.kind, hcurrent] at hend
    exact .pure (.inr ⟨rfl, hend⟩)
  · exact ((notes_recordExpected _).bind fun _ => .ite advances_skipStatement (.pure _)).cleanAt

variable {statement : Phrase Statement}

theorem statementsWithin_of_end (n : Nat) {s : Session}
    (h : s.input.kind = .keyword .endKw ∨ s.input.kind = .endOfText) :
    statementsWithin statement n s = .ok [] s := by
  cases n with
  | zero => rfl
  | succ n =>
    unfold statementsWithin
    rw [kind_bind]
    rcases h with h | h <;> rw [h] <;> rfl

theorem cleanAt_statementsWithin_of_end (n : Nat) {t : Token}
    (h : t.kind = .keyword .endKw ∨ t.kind = .endOfText) :
    CleanAt t (statementsWithin statement n) fun us u ss => us = [] ∧ u = t ∧ ss = [] := by
  intro ts last notes ss s hts ht hok _
  cases ht
  have hrun : statementsWithin statement n ⟨⟨ts, last⟩, notes⟩ = _ := statementsWithin_of_end n h
  rw [hrun] at hok
  cases hok
  exact ⟨[], ts, rfl, rfl, rfl, rfl, rfl⟩

theorem sequenceRead_nil (t : Token) : SequenceRead [] t [] :=
  ⟨.one .empty, forall_mem_nil _⟩

theorem cleanAt_statementsWithin (hstatement : ∀ t, CleanAt t statement StatementRead)
    (htidy : Tidy statement) (n : Nat) (t : Token) :
    CleanAt t (statementsWithin statement n) SequenceRead := by
  induction n generalizing t with
  | zero => exact .pure (sequenceRead_nil t)
  | succ n ih =>
    have hrest := advances (tidy_statementsWithin htidy n)
    refine cleanAt_kind ?_
    split
    · exact .pure (sequenceRead_nil t)
    · exact .pure (sequenceRead_nil t)
    · next ht =>
      refine cleanAt_advance ht nofun fun u => (ih u).mono fun us v ss hss => ?_
      exact ⟨.more .empty ht hss.text, hss.nearest⟩
    · next hend hlast hsemi =>
      refine .get fun _ _ _ => ?_
      refine (cleanAt_attempt (hstatement t) (Phrase.advances htidy)).bind (fun r => ?_)
        fun us u r hr hsame => ?_
      · cases r with
        | ok s => exact .bind advances_afterStatement fun _ => .bind hrest fun _ => .pure _
        | error e => exact .bind (advances_afterFault _ _) fun _ => hrest
      cases r with
      | error e => exact ((notes_afterFault e _).bind fun _ => hrest).cleanAt
      | ok s =>
        have hread := hr s rfl
        refine (cleanAt_afterStatement u).bind (fun _ => .bind hrest fun _ => .pure _) ?_
        -- A statement without a text leaves its token for what has to follow it.
        rintro vs v _ (⟨rfl, hu⟩ | ⟨rfl, hu⟩) hsame'
        · have hkept : kept us s = [s] := if_neg fun hus => hsemi (hsame hus ▸ hu)
          refine (ih v).map fun ws w ss hss => ?_
          have hmore := SequenceText.more hread.text hu hss.text
          rw [hkept] at hmore
          exact ⟨hmore, forall_mem_cons.mpr ⟨hread.nearest, hss.nearest⟩⟩
        · have hkept : kept us s = [s] := by
            refine if_neg fun hus => ?_
            rw [hsame hus] at hu
            exact hu.elim hend hlast
          cases hsame' rfl
          refine (cleanAt_statementsWithin_of_end n hu).map ?_
          rintro _ _ _ ⟨rfl, rfl, rfl⟩
          have hone := SequenceText.one hread.text
          rw [hkept] at hone
          rw [append_nil, append_nil]
          exact ⟨hone, forall_mem_singleton.mpr hread.nearest⟩

theorem cleanAt_statements (hstatement : ∀ t, CleanAt t statement StatementRead)
    (htidy : Tidy statement) (t : Token) : CleanAt t (statements statement) SequenceRead :=
  .get fun _ _ _ => cleanAt_statementsWithin hstatement htidy _ t

end Recover

theorem Phrase.cleanAt_statementWithin (n : Nat) (t : Token) :
    CleanAt t (statementWithin n) StatementRead := by
  induction n generalizing t with
  | zero => exact (Reads.expected _ t).lift.mono fun _ _ _ => False.elim
  | succ n ih =>
    have htidy := tidy_statementWithin n
    refine cleanAt_position (cleanAt_kind ?_)
    split
    · exact (Parse.reads_assignmentOrCall t).lift.mono fun us u s hs => hs u
    · next ht =>
      refine cleanAt_advance ht nofun fun u => ?_
      refine (Recover.cleanAt_lift (Recover.cleanAt_statements ih htidy u)).bind
        (fun _ => .bind (Parse.advances_lift (Parse.advances_expect _ _)) fun _ => .pure _)
        fun us v ss hss _ => ?_
      exact cleanAt_expect nofun fun hv _ =>
        .pure ⟨.compound ht hss.text hv, .compound hss.nearest, nofun⟩
    · next ht =>
      refine cleanAt_advance ht nofun fun u => ?_
      refine (Parse.reads_expression u).lift_bind fun us v c hc _ => ?_
      refine cleanAt_expect nofun fun hv w => (ih w).bind (fun _ => ?_) fun vs x s hs _ => ?_
      · exact .bind (Parse.advances_lift (Parse.advances_accept _)) fun _ =>
          .ite (.bind (advances htidy) fun _ => .pure _) (.pure _)
      refine cleanAt_accept nofun (fun hx y => ?_) fun hx => ?_
      · -- An open statement stops before no `else`.
        have hclosed : s.isOpen = false := Bool.not_eq_true _ ▸ fun h => hs.closed h hx
        refine (ih y).map fun ws z s' hs' => ⟨?_, ?_, hs'.closed⟩
        · exact .ifThenElse ht hc hv hs.text hx hs'.text
        · exact .ifThenElse hs.nearest hclosed hs'.nearest
      · rw [if_neg Bool.false_ne_true]
        refine .pure ?_
        rw [append_nil]
        exact ⟨.ifThen ht hc hv hs.text, .ifThen hs.nearest, fun _ => hx⟩
    · next ht =>
      refine cleanAt_advance ht nofun fun u => cleanAt_identifier fun n hn v => ?_
      refine cleanAt_expect nofun fun hv w => ?_
      refine (Parse.reads_expression w).lift_bind fun us x first hfirst _ => ?_
      refine (Parse.reads_direction x).lift_bind ?_
      rintro _ y d ⟨x, rfl, hx⟩ -
      refine (Parse.reads_expression y).lift_bind fun vs z last hlast _ => ?_
      refine cleanAt_expect nofun fun hz o => (ih o).map fun ws q s hs => ?_
      exact ⟨.count ht hn hv hfirst hx hlast hz hs.text, .count hs.nearest, hs.closed⟩
    · next ht =>
      refine cleanAt_advance ht nofun fun u => ?_
      refine (Parse.reads_expression u).lift_bind fun us v c hc _ => ?_
      refine cleanAt_expect nofun fun hv w => (ih w).map fun vs x s hs => ?_
      exact ⟨.loop ht hc hv hs.text, .loop hs.nearest, hs.closed⟩
    · next ht =>
      exact cleanAt_advance ht nofun fun _ => .pure ⟨.exit ht, .exit, nofun⟩
    · exact .pure ⟨.empty, .compound (forall_mem_nil _), nofun⟩
    · exact .pure ⟨.empty, .compound (forall_mem_nil _), nofun⟩
    · exact .pure ⟨.empty, .compound (forall_mem_nil _), nofun⟩
    · exact (Reads.expected _ t).lift.mono fun _ _ _ => False.elim

theorem Phrase.cleanAt_statement (t : Token) : CleanAt t statement StatementRead :=
  .get fun _ _ _ => cleanAt_statementWithin _ t

end Reads

section Takes

/-- What may follow a statement: an `else` only if it cannot belong to a condition within. -/
structure StatementStops (s : Statement) (k : Token.Kind) : Prop where
  ends : k = .mark .semicolon ∨ k = .keyword .endKw ∨ k = .keyword .elseKw
  closed : s.isOpen = true → k ≠ .keyword .elseKw

/-- The reader takes every text of a statement, up to a length, whose tree has its `else`s at the
nearest conditions. -/
def TakesStatements (n : Nat) (statement : Phrase Statement) : Prop :=
  ∀ ⦃ts s⦄ rest last notes, ts.length < n → StatementText ts (Input.mk rest last).position s →
    s.ElsesNearest → StatementStops s (Input.mk rest last).kind →
    statement ⟨⟨ts ++ rest, last⟩, notes⟩ = .ok s ⟨⟨rest, last⟩, notes⟩

variable {s : Statement} {ts : List Token} {last t : Token}

theorem StatementStops.stops {k : Token.Kind} (h : StatementStops s k) (ts : List Token) :
    Parse.Stops 1 ts k := by
  rcases h.ends with rfl | rfl | rfl <;> exact Parse.stops_of_ends (by rfl) 1 ts

/-- A statement that is not empty starts with none of the tokens that may follow one. -/
theorem starts_statement {next : Position} (h : StatementText ts next s) (hne : ts ≠ []) :
    Starts ts fun k => k ≠ .keyword .endKw ∧ k ≠ .endOfText ∧ k ≠ .mark .semicolon := by
  cases h with
  | empty => exact absurd rfl hne
  | assign ht | assignElement ht | call ht | callWith ht =>
    exact ⟨_, _, rfl, by rw [ht.1]; exact ⟨nofun, nofun, nofun⟩⟩
  | compound ht | ifThen ht | ifThenElse ht | count ht | loop ht | exit ht =>
    exact ⟨_, _, rfl, by rw [ht]; exact ⟨nofun, nofun, nofun⟩⟩

namespace Recover

variable {t : Token} {ts rest : List Token} {last : Token} {notes : List Note}
  {statement : Phrase Statement}

theorem afterStatement_cons (h : t.kind = .mark .semicolon) :
    afterStatement ⟨⟨t :: ts, last⟩, notes⟩ = .ok () ⟨⟨ts, last⟩, notes⟩ := by
  unfold afterStatement
  rw [bind_of_ok (accept_cons h)]
  rfl

theorem afterStatement_of_end {s : Session} (h : s.input.kind = .keyword .endKw) :
    afterStatement s = .ok () s := by
  have hne : s.input.kind ≠ .mark .semicolon := by
    rw [h]
    nofun
  unfold afterStatement
  rw [bind_of_ok (accept_of_ne hne), if_neg Bool.false_ne_true, get_bind,
    if_pos (.inl h)]
  rfl

theorem statementsWithin_semicolon (h : t.kind = .mark .semicolon) (n : Nat) :
    statementsWithin statement (n + 1) ⟨⟨t :: ts, last⟩, notes⟩ =
      statementsWithin statement n ⟨⟨ts, last⟩, notes⟩ := by
  rw [statementsWithin, kind_bind, Parse.kind_cons, h]
  rfl

theorem statementsWithin_of_ok {s s' : Session} {a : Statement} (h : statement s = .ok a s')
    (hk : s.input.kind ≠ .keyword .endKw ∧ s.input.kind ≠ .endOfText ∧
      s.input.kind ≠ .mark .semicolon) (n : Nat) : statementsWithin statement (n + 1) s = (do
        afterStatement
        return a :: (← statementsWithin statement n) : Recover (List Statement)) s' := by
  rw [statementsWithin, kind_bind]
  -- The branch taken is found first, as a reader; its run from `s` is the run of an attempt.
  refine (congrFun (g := ?branch) ?taken s).trans ?run
  case taken =>
    split
    · next hend => exact absurd hend hk.1
    · next hlast => exact absurd hlast hk.2.1
    · next hsemi => exact absurd hsemi hk.2.2
    · rfl
  case run => exact bind_of_ok (attempt_of_ok h) _

variable {ss : List Statement}

theorem statementsWithin_of_text {n : Nat} (hstatement : TakesStatements n statement)
    {next : Position} (h : SequenceText StatementText ts next ss)
    (hnext : next = (Input.mk rest last).position) (hn : ts.length < n)
    (hnearest : ∀ s ∈ ss, s.ElsesNearest) (hend : (Input.mk rest last).kind = .keyword .endKw)
    {m : Nat} (hm : ts.length < m) :
    statementsWithin statement m ⟨⟨ts ++ rest, last⟩, notes⟩ = .ok ss ⟨⟨rest, last⟩, notes⟩ := by
  induction h generalizing m with
  | @one ts next s hs =>
    subst hnext
    by_cases hts : ts = []
    · subst hts
      exact statementsWithin_of_end m (.inl hend)
    rw [kept, if_neg hts] at hnearest ⊢
    obtain ⟨m, rfl⟩ : ∃ m', m = m' + 1 := ⟨m - 1, by omega⟩
    have hstops : StatementStops s (Input.mk rest last).kind := by
      rw [hend]
      exact ⟨.inr (.inl rfl), nofun⟩
    have hread := hstatement rest last notes hn hs (hnearest s mem_cons_self) hstops
    rw [statementsWithin_of_ok hread ((starts_statement hs hts).kind rest last),
      bind_of_ok (afterStatement_of_end hend), bind_of_ok (statementsWithin_of_end m (.inl hend))]
    rfl
  | @more ts t us next s ss hs ht _ ih =>
    subst hnext
    rw [length_append, length_cons] at hn hm
    obtain ⟨m, rfl⟩ : ∃ m', m = m' + 1 := ⟨m - 1, by omega⟩
    have hrest := ih rfl (by omega) (fun s hs => hnearest s (mem_append_right _ hs))
      (m := m) (by omega)
    by_cases hts : ts = []
    · subst hts
      exact (statementsWithin_semicolon ht m).trans hrest
    have hkept : kept ts s = [s] := if_neg hts
    have hstops : StatementStops s t.kind := by
      rw [ht]
      exact ⟨.inl rfl, nofun⟩
    rw [hkept] at hnearest ⊢
    have hread := hstatement (t :: (us ++ rest)) last notes (by omega) hs
      (hnearest s mem_cons_self) hstops
    rw [append_assoc, cons_append, statementsWithin_of_ok hread
      ((starts_statement hs hts).kind (t :: (us ++ rest)) last),
      bind_of_ok (afterStatement_cons ht), bind_of_ok hrest]
    rfl

theorem statements_of_text {n : Nat} (hstatement : TakesStatements n statement)
    (h : SequenceText StatementText ts (Input.mk rest last).position ss) (hn : ts.length < n)
    (hnearest : ∀ s ∈ ss, s.ElsesNearest) (hend : (Input.mk rest last).kind = .keyword .endKw) :
    statements statement ⟨⟨ts ++ rest, last⟩, notes⟩ = .ok ss ⟨⟨rest, last⟩, notes⟩ := by
  refine statementsWithin_of_text hstatement h rfl hn hnearest hend ?_
  rw [length_append]
  omega

end Recover

theorem Parse.direction_cons {d : Direction} (h : t.kind = d.kind) :
    direction ⟨t :: ts, last⟩ = .ok d ⟨ts, last⟩ := by
  unfold direction
  rw [kind_bind, kind_cons, h]
  cases d <;> rfl

theorem Parse.assignmentOrCall_of_text {rest : List Token} {next : Position}
    (h : StatementText (t :: ts) next s) (ht : t.kind = .identifier)
    (hstops : StatementStops s (Input.mk rest last).kind) :
    assignmentOrCall ⟨t :: (ts ++ rest), last⟩ = .ok s ⟨rest, last⟩ := by
  have hexpr : ∀ {us : List Token} {e : Expr}, ExprText us e →
      expression ⟨us ++ rest, last⟩ = .ok e ⟨rest, last⟩ := fun he =>
    takes_expression _ rest last (Nat.le_refl _) he (hstops.stops _)
  unfold assignmentOrCall
  cases h with
  | assign hn hu he =>
    rw [bind_of_ok (identifier_cons hn _)]
    dsimp only
    rw [kind_bind, cons_append, kind_cons, hu]
    dsimp only
    rw [advance_cons, bind_of_ok (hexpr he)]
    rfl
  | @assignElement _ ts u us _ n es e hn hes hu he =>
    have hread := takes_indexList (takes_expression ts.length) (u :: (us ++ rest)) last
      (Nat.le_refl _) hes trivial
    rw [bind_of_ok (identifier_cons hn _)]
    dsimp only
    rw [kind_bind, append_assoc, cons_append, (starts_indices hes).kind]
    dsimp only
    rw [bind_of_ok hread, bind_of_ok (expect_cons hu _), bind_of_ok (hexpr he)]
    rfl
  | @call _ _ n hn =>
    rw [nil_append, bind_of_ok (identifier_cons hn _)]
    dsimp only
    rw [kind_bind]
    rcases hstops.ends with hk | hk | hk <;> rw [hk] <;> rfl
  | callWith hn hes =>
    have hread := takes_argumentList (takes_expression _) (fun _ _ => starts_expr) rest last
      (Nat.le_refl _) hes trivial
    rw [bind_of_ok (identifier_cons hn _)]
    dsimp only
    rw [kind_bind, (starts_arguments hes).kind]
    dsimp only
    rw [bind_of_ok hread]
    rfl
  | compound h | ifThen h | ifThenElse h | count h | loop h | exit h =>
    rw [ht] at h
    cases h

namespace Phrase

theorem takesStatements_within (n : Nat) : TakesStatements n (statementWithin n) := by
  induction n with
  | zero => exact fun _ _ _ _ _ hn => absurd hn (Nat.not_lt_zero _)
  | succ n ih =>
    intro ts s rest last notes hn hs hnearest hstops
    have hname : ∀ {t us}, ts = t :: us → t.kind = .identifier →
        statementWithin (n + 1) ⟨⟨ts ++ rest, last⟩, notes⟩ = .ok s ⟨⟨rest, last⟩, notes⟩ := by
      rintro t us rfl ht
      unfold statementWithin
      rw [position_kind_bind, cons_append, Parse.kind_cons, ht]
      exact Parse.lift_of_ok (Parse.assignmentOrCall_of_text hs ht hstops) notes
    have hexpr : ∀ {us vs : List Token} {u : Token} {e : Expr}, ExprText us e →
        Parse.endsExpr u.kind = true → (liftM Parse.expression : Phrase Expr)
          ⟨⟨us ++ u :: vs, last⟩, notes⟩ = .ok e ⟨⟨u :: vs, last⟩, notes⟩ := by
      intro us vs u e he hu
      have hread := Parse.takes_expression _ (u :: vs) last (Nat.le_refl _) he
        (Parse.stops_of_ends hu 1 _)
      exact Parse.lift_of_ok hread notes
    cases hs with
    | empty =>
      unfold statementWithin
      rw [position_kind_bind, nil_append]
      rcases hstops.ends with hk | hk | hk <;> rw [hk] <;> rfl
    | assign ht | assignElement ht | call ht | callWith ht => exact hname rfl ht.1
    | @compound t ts u _ ss ht hss hu =>
      cases hnearest with
      | compound hnearest =>
      rw [length_cons, length_append] at hn
      have hread : Recover.statements (statementWithin n) ⟨⟨ts ++ u :: rest, last⟩, notes⟩ = _ :=
        Recover.statements_of_text ih hss (by omega) hnearest hu
      unfold statementWithin
      rw [position_kind_bind, cons_append, Parse.kind_cons, ht]
      dsimp only
      rw [advance_cons, append_assoc, singleton_append,
        bind_of_ok (Recover.lift_of_ok hread), bind_of_ok (expect_cons hu _)]
      rfl
    | @ifThen t ts u us _ c s ht hc hu hs =>
      cases hnearest with
      | ifThen hnearest =>
      rw [length_cons, length_append, length_cons] at hn
      have helse := hstops.closed rfl
      have hread := ih rest last notes (by omega) hs hnearest ⟨hstops.ends, fun _ => helse⟩
      unfold statementWithin
      rw [position_kind_bind, cons_append, Parse.kind_cons, ht]
      dsimp only
      rw [advance_cons, append_assoc, cons_append,
        bind_of_ok (hexpr hc (by rw [hu]; rfl)), bind_of_ok (expect_cons hu _), bind_of_ok hread,
        bind_of_ok (Parse.lift_of_ok (Parse.accept_of_ne helse) _)]
      rfl
    | @ifThenElse t ts u us v vs _ c s s' ht hc hu hs hv hs' =>
      cases hnearest with
      | ifThenElse hnearest hclosed hnearest' =>
      simp only [length_cons, length_append] at hn
      have hstops' : StatementStops s v.kind := by
        rw [hv]
        exact ⟨.inr (.inr rfl), fun h => absurd h (Bool.eq_false_iff.mp hclosed)⟩
      have hread := ih (v :: (vs ++ rest)) last notes (by omega) hs hnearest hstops'
      have hread' := ih rest last notes (by omega) hs' hnearest' ⟨hstops.ends, hstops.closed⟩
      unfold statementWithin
      rw [position_kind_bind, cons_append, Parse.kind_cons, ht]
      dsimp only
      rw [advance_cons, append_assoc, cons_append, append_assoc, cons_append,
        bind_of_ok (hexpr hc (by rw [hu]; rfl)),
        bind_of_ok (expect_cons hu _), bind_of_ok hread,
        bind_of_ok (Parse.lift_of_ok (Parse.accept_cons hv) _), if_pos rfl, bind_of_ok hread']
      rfl
    | @count t x a ts d us o vs _ name first final direction s ht hx ha hfirst hd hfinal ho hs =>
      cases hnearest with
      | count hnearest =>
      simp only [length_cons, length_append] at hn
      have hread := ih rest last notes (by omega) hs hnearest ⟨hstops.ends, hstops.closed⟩
      unfold statementWithin
      rw [position_kind_bind, cons_append, Parse.kind_cons, ht]
      dsimp only
      rw [advance_cons, cons_append,
        bind_of_ok (Parse.lift_of_ok (Parse.identifier_cons hx _) _)]
      rw [cons_append, bind_of_ok (expect_cons ha _), append_assoc,
        cons_append, bind_of_ok (hexpr hfirst (by rw [hd]; cases direction <;> rfl)),
        bind_of_ok (Parse.lift_of_ok (Parse.direction_cons hd) _), append_assoc,
        cons_append, bind_of_ok (hexpr hfinal (by rw [ho]; rfl)),
        bind_of_ok (expect_cons ho _), bind_of_ok hread]
      rfl
    | @loop t ts u us _ c s ht hc hu hs =>
      cases hnearest with
      | loop hnearest =>
      rw [length_cons, length_append, length_cons] at hn
      have hread := ih rest last notes (by omega) hs hnearest ⟨hstops.ends, hstops.closed⟩
      unfold statementWithin
      rw [position_kind_bind, cons_append, Parse.kind_cons, ht]
      dsimp only
      rw [advance_cons, append_assoc, cons_append,
        bind_of_ok (hexpr hc (by rw [hu]; rfl)), bind_of_ok (expect_cons hu _), bind_of_ok hread]
      rfl
    | @exit t _ ht =>
      unfold statementWithin
      rw [position_kind_bind, singleton_append, Parse.kind_cons, ht]
      rfl

theorem takesStatements (n : Nat) : TakesStatements n statement := by
  intro ts s rest last notes _ hs hnearest hstops
  refine takesStatements_within _ rest last notes ?_ hs hnearest hstops
  rw [length_append]
  omega

end Phrase

end Takes

end MiniPascal
